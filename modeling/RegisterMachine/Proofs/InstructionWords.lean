import RegisterMachine.Instruction

/-!
# Instruction words without loss

The operation and the operands of an instruction word are fields of bits that do not overlap and
that cover the word, in each of the three formats. So in each format a word is known by its
operation and its operands: it is the one word that is made of them (`abc_eq_iff`, `abx_eq_iff`,
`asbx_eq_iff`).

The fields are defined by division and remainder, and a word as a sum. Both are the same as taking
bits out of the word by shifts and masks, and putting them in (`fieldsOfBits`, `word_abc_eq_or`,
`word_abx_eq_or`).
-/

namespace RegisterMachine

-- A power of natural numbers means the same beside any other notion of powers.
attribute [local instance (2000)] instPowNat

namespace Instruction

variable {op : Opcode} {i : Instruction} {a b c bx : Nat} {sbx : Int}

/-! ### Bits -/

theorem toNat_shiftRight_and (w : UInt32) {k n : Nat} (hk : k < 32) (hn : n ≤ 32) :
    (w >>> UInt32.ofNat k &&& UInt32.ofNat (2 ^ n - 1)).toNat = w.toNat / 2 ^ k % 2 ^ n := by
  have hmask : (UInt32.ofNat (2 ^ n - 1)).toNat = 2 ^ n - 1 := by
    have hle : 2 ^ n ≤ 2 ^ 32 := Nat.pow_le_pow_right (by decide) hn
    have hpos := Nat.two_pow_pos n
    exact UInt32.toNat_ofNat_of_lt' (show 2 ^ n - 1 < 2 ^ 32 by omega)
  have hshift : (UInt32.ofNat k).toNat = k :=
    UInt32.toNat_ofNat_of_lt' (Nat.lt_trans hk (by decide))
  rw [UInt32.toNat_and, UInt32.toNat_shiftRight, hmask, hshift, Nat.mod_eq_of_lt hk,
    Nat.shiftRight_eq_div_pow, Nat.and_two_pow_sub_one_eq_mod]

/-- An operand is cut to the bits of its field and put above the bits that are there. -/
theorem toNat_or_field {x : UInt32} {k n : Nat} (v : Nat) (hk : k < 32) (hn : k + n ≤ 32)
    (hx : x.toNat < 2 ^ k) :
    (x ||| (UInt32.ofNat v &&& UInt32.ofNat (2 ^ n - 1)) <<< UInt32.ofNat k).toNat =
      x.toNat + 2 ^ k * (v % 2 ^ n) := by
  have hfield : (UInt32.ofNat v &&& UInt32.ofNat (2 ^ n - 1)).toNat = v % 2 ^ n := by
    have hzero : UInt32.ofNat v >>> UInt32.ofNat 0 = UInt32.ofNat v := UInt32.shiftRight_zero
    have hdvd : 2 ^ n ∣ 2 ^ 32 := Nat.pow_dvd_pow 2 (by omega)
    rw [← hzero, toNat_shiftRight_and _ (by decide) (by omega), Nat.pow_zero, Nat.div_one,
      UInt32.toNat_ofNat', Nat.mod_mod_of_dvd v hdvd]
  have hshift : (UInt32.ofNat k).toNat = k :=
    UInt32.toNat_ofNat_of_lt' (Nat.lt_trans hk (by decide))
  have hroom : v % 2 ^ n * 2 ^ k < 2 ^ 32 := by
    calc v % 2 ^ n * 2 ^ k
        < 2 ^ n * 2 ^ k :=
          Nat.mul_lt_mul_of_pos_right (Nat.mod_lt v (Nat.two_pow_pos n)) (Nat.two_pow_pos k)
      _ = 2 ^ (n + k) := (Nat.pow_add 2 n k).symm
      _ ≤ 2 ^ 32 := Nat.pow_le_pow_right (by decide) (by omega)
  rw [UInt32.toNat_or, UInt32.toNat_shiftLeft, hfield, hshift, Nat.mod_eq_of_lt hk,
    Nat.shiftLeft_eq, Nat.mod_eq_of_lt hroom, Nat.or_comm, ← Nat.shiftLeft_eq,
    ← Nat.shiftLeft_add_eq_or_of_lt hx, Nat.shiftLeft_eq, Nat.add_comm, Nat.mul_comm]

theorem bx_lt (i : Instruction) : i.bx < sizeBx := by
  have := i.word.toNat_lt
  rw [bx, sizeBx]
  omega

theorem sbx_bounds (i : Instruction) : -131071 ≤ i.sbx ∧ i.sbx ≤ 131072 := by
  have := i.bx_lt
  rw [sizeBx] at this
  rw [sbx, bias]
  omega

/-- The operation and the operands are bits of the word. -/
structure FieldsOfBits (i : Instruction) : Prop where
  opcode : i.opcodeField = (i.word &&& 63).toNat
  a : i.a = (i.word >>> 6 &&& 255).toNat
  b : i.b = (i.word >>> 23 &&& 511).toNat
  c : i.c = (i.word >>> 14 &&& 511).toNat
  bx : i.bx = (i.word >>> 14 &&& 262143).toNat

theorem fieldsOfBits (i : Instruction) : i.FieldsOfBits where
  opcode := by
    have h := toNat_shiftRight_and i.word (k := 0) (n := 6) (by decide) (by decide)
    rw [Nat.pow_zero, Nat.div_one] at h
    exact h.symm
  a := (toNat_shiftRight_and i.word (k := 6) (n := 8) (by decide) (by decide)).symm
  b := (Nat.mod_eq_of_lt i.b_lt).symm.trans
    (toNat_shiftRight_and i.word (k := 23) (n := 9) (by decide) (by decide)).symm
  c := (toNat_shiftRight_and i.word (k := 14) (n := 9) (by decide) (by decide)).symm
  bx := (Nat.mod_eq_of_lt i.bx_lt).symm.trans
    (toNat_shiftRight_and i.word (k := 14) (n := 18) (by decide) (by decide)).symm

theorem toNat_number_or_a (op : Opcode) (a : Nat) :
    (UInt32.ofNat op.number ||| (UInt32.ofNat a &&& 255) <<< 6).toNat =
      op.number + 64 * (a % sizeA) := by
  have hnumber : (UInt32.ofNat op.number).toNat = op.number :=
    UInt32.toNat_ofNat_of_lt' (Nat.lt_trans op.number_lt (by decide))
  have hop : (UInt32.ofNat op.number).toNat < 2 ^ 6 := by
    rw [hnumber]
    exact Nat.lt_trans op.number_lt (by decide)
  refine (toNat_or_field a (n := 8) (by decide) (by decide) hop).trans ?_
  rw [hnumber]
  rfl

theorem word_abc_eq_or (op : Opcode) (a b c : Nat) :
    (abc op a b c).word =
      UInt32.ofNat op.number ||| (UInt32.ofNat a &&& 255) <<< 6 |||
        (UInt32.ofNat c &&& 511) <<< 14 ||| (UInt32.ofNat b &&& 511) <<< 23 := by
  have hop := op.number_lt
  have ha : a % sizeA < 256 := Nat.mod_lt _ (by decide)
  have hc : c % sizeB < 512 := Nat.mod_lt _ (by decide)
  have hlow := toNat_number_or_a op a
  have hmiddle := toNat_or_field c (k := 14) (n := 9) (by decide) (by decide)
    (hlow ▸ (by omega : op.number + 64 * (a % sizeA) < 16384))
  rw [hlow] at hmiddle
  have hhigh := toNat_or_field b (k := 23) (n := 9) (by decide) (by decide)
    (hmiddle ▸ (by omega : op.number + 64 * (a % sizeA) + 16384 * (c % sizeB) < 8388608))
  rw [hmiddle] at hhigh
  rw [← UInt32.toNat_inj, word_abc]
  exact hhigh.symm

theorem word_abx_eq_or (op : Opcode) (a bx : Nat) :
    (abx op a bx).word =
      UInt32.ofNat op.number ||| (UInt32.ofNat a &&& 255) <<< 6 |||
        (UInt32.ofNat bx &&& 262143) <<< 14 := by
  have hop := op.number_lt
  have ha : a % sizeA < 256 := Nat.mod_lt _ (by decide)
  have hlow := toNat_number_or_a op a
  have hhigh := toNat_or_field bx (k := 14) (n := 18) (by decide) (by decide)
    (hlow ▸ (by omega : op.number + 64 * (a % sizeA) < 16384))
  rw [hlow] at hhigh
  rw [← UInt32.toNat_inj, word_abx]
  exact hhigh.symm

/-! ### A word and its operands -/

/-- The two operands of nine bits are the one of eighteen bits. -/
theorem bx_eq (i : Instruction) : i.bx = i.b * 512 + i.c := by
  rw [Instruction.bx, Instruction.b, Instruction.c, sizeB]
  omega

theorem toNat_word (i : Instruction) :
    i.word.toNat = i.opcodeField + 64 * i.a + 16384 * i.bx := by
  rw [opcodeField, Instruction.a, Instruction.bx, sizeA]
  omega

theorem eq_of_toNat_word {i j : Instruction} (h : i.word.toNat = j.word.toNat) : i = j := by
  cases i
  cases j
  exact congrArg mk (UInt32.toNat_inj.1 h)

/-- The only word with this operation and these operands A and Bx. -/
theorem abx_eq_iff (ha : a < 256) (hbx : bx < 262144) :
    abx op a bx = i ↔ i.opcode? = some op ∧ i.a = a ∧ i.bx = bx := by
  constructor
  · rintro rfl
    rw [opcode?_abx, a_abx, bx_abx, sizeA, sizeBx, Nat.mod_eq_of_lt ha, Nat.mod_eq_of_lt hbx]
    exact ⟨rfl, rfl, rfl⟩
  · rintro ⟨hop, rfl, rfl⟩
    refine eq_of_toNat_word ?_
    rw [word_abx, toNat_word i, sizeA, sizeBx, Nat.mod_eq_of_lt ha, Nat.mod_eq_of_lt hbx,
      Opcode.number_of_ofNumber?_eq_some hop]

/-- The format with three operands has B and C in the place of Bx. -/
theorem abc_eq_abx (op : Opcode) (a : Nat) (hb : b < 512) (hc : c < 512) :
    abc op a b c = abx op a (b * 512 + c) := by
  refine eq_of_toNat_word ?_
  rw [word_abc, word_abx, sizeB, sizeBx, Nat.mod_eq_of_lt hb, Nat.mod_eq_of_lt hc,
    Nat.mod_eq_of_lt (by omega : b * 512 + c < 262144)]
  omega

/-- The only word with this operation and these operands A, B and C. -/
theorem abc_eq_iff (ha : a < 256) (hb : b < 512) (hc : c < 512) :
    abc op a b c = i ↔ i.opcode? = some op ∧ i.a = a ∧ i.b = b ∧ i.c = c := by
  have hi := i.c_lt
  have hsplit : i.bx = b * 512 + c ↔ i.b = b ∧ i.c = c := by
    rw [bx_eq]
    omega
  rw [abc_eq_abx op a hb hc, abx_eq_iff ha (by omega), hsplit]

theorem asbx_eq_iff (ha : a < 256) (hlow : -131071 ≤ sbx) (hhigh : sbx ≤ 131072) :
    asbx op a sbx = i ↔ i.opcode? = some op ∧ i.a = a ∧ i.sbx = sbx := by
  have hbiased : i.bx = ((sbx + bias) % sizeBx).toNat ↔ i.sbx = sbx := by
    rw [Instruction.sbx, bias, sizeBx]
    omega
  rw [asbx, abx_eq_iff ha, hbiased]
  rw [sizeBx]
  omega

/-- **Instruction words are without loss.** A word that is made in any of the three formats is read
as the operation and the operands that it was made of, if these are in range. A word that stands for
an operation is made again, in each of the formats, from the operation and the operands that it is
read as. The formats agree in what they read, as Bx is B and C. All this is done by shifts and masks
on words of 32 bits. -/
theorem words_without_loss :
    (∀ op a b c, a < 256 → b < 512 → c < 512 →
      (abc op a b c).opcode? = some op ∧ (abc op a b c).a = a ∧
        (abc op a b c).b = b ∧ (abc op a b c).c = c) ∧
    (∀ op a bx, a < 256 → bx < 262144 →
      (abx op a bx).opcode? = some op ∧ (abx op a bx).a = a ∧ (abx op a bx).bx = bx) ∧
    (∀ op a sbx, a < 256 → -131071 ≤ sbx → sbx ≤ 131072 →
      (asbx op a sbx).opcode? = some op ∧ (asbx op a sbx).a = a ∧ (asbx op a sbx).sbx = sbx) ∧
    (∀ i op, i.opcode? = some op →
      abc op i.a i.b i.c = i ∧ abx op i.a i.bx = i ∧ asbx op i.a i.sbx = i) ∧
    (∀ i : Instruction, i.bx = i.b * 512 + i.c) ∧
    (∀ i : Instruction, i.FieldsOfBits) ∧
    (∀ op a b c, (abc op a b c).word =
      UInt32.ofNat op.number ||| (UInt32.ofNat a &&& 255) <<< 6 |||
        (UInt32.ofNat c &&& 511) <<< 14 ||| (UInt32.ofNat b &&& 511) <<< 23) ∧
    ∀ op a bx, (abx op a bx).word =
      UInt32.ofNat op.number ||| (UInt32.ofNat a &&& 255) <<< 6 |||
        (UInt32.ofNat bx &&& 262143) <<< 14 := by
  refine ⟨fun op a b c ha hb hc => (abc_eq_iff ha hb hc).1 rfl,
    fun op a bx ha hbx => (abx_eq_iff ha hbx).1 rfl,
    fun op a sbx ha hlow hhigh => (asbx_eq_iff ha hlow hhigh).1 rfl,
    fun i op hop => ⟨?_, ?_, ?_⟩, bx_eq, fieldsOfBits, word_abc_eq_or, word_abx_eq_or⟩
  · exact (abc_eq_iff i.a_lt i.b_lt i.c_lt).2 ⟨hop, rfl, rfl, rfl⟩
  · exact (abx_eq_iff i.a_lt i.bx_lt).2 ⟨hop, rfl, rfl⟩
  · exact (asbx_eq_iff i.a_lt i.sbx_bounds.1 i.sbx_bounds.2).2 ⟨hop, rfl, rfl⟩

/-- The largest operands, the least and the greatest signed one, and the word of ones except for
its operation. -/
theorem extreme_words :
    ((abc .call 255 511 511).b = 511 ∧ (abx .loadK 255 262143).bx = 262143 ∧
      (asbx .jmp 255 (-131071)).sbx = -131071 ∧ (asbx .jmp 0 131072).sbx = 131072) ∧
    (Instruction.mk 0xFFFFFFC1).opcode? = some .loadK ∧
      abc .loadK 255 511 511 = ⟨0xFFFFFFC1⟩ ∧ asbx .loadK 255 131072 = ⟨0xFFFFFFC1⟩ := by
  obtain ⟨habc, habx, hasbx, hagain, -⟩ := words_without_loss
  obtain ⟨-, -, hb, -⟩ := habc .call 255 511 511 (by decide) (by decide) (by decide)
  obtain ⟨-, -, hbx⟩ := habx .loadK 255 262143 (by decide) (by decide)
  obtain ⟨-, -, hleast⟩ := hasbx .jmp 255 (-131071) (by decide) (by decide) (by decide)
  obtain ⟨-, -, hgreatest⟩ := hasbx .jmp 0 131072 (by decide) (by decide) (by decide)
  have hop : (Instruction.mk 0xFFFFFFC1).opcode? = some .loadK := by decide
  obtain ⟨hofabc, -, hofasbx⟩ := hagain _ _ hop
  exact ⟨⟨hb, hbx, hleast, hgreatest⟩, hop, hofabc, hofasbx⟩

end Instruction

end RegisterMachine
