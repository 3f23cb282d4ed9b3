import RegisterMachine.Decimal.Layout
import RegisterMachine.Json.Reader
import RegisterMachine.Text.Parts

/-!
# Regular numerals

A numeral is regular if it has the form that JSON asks for: there are digits before the point, and
behind the point and in the power of ten if there are these parts, and only the number zero starts
with the digit zero. All layouts write regular numerals (`NumberLayout.isRegular_numeral`), and a
regular numeral is read as itself, digit by digit (`Json.readNumeral_chars`).

That a layout writes no leading zeros hangs on the shortest decimal: none that reads back as a
positive number is zero.
-/

namespace RegisterMachine

-- A power of natural numbers means the same beside any other notion of powers.
attribute [local instance (2000)] instPowNat

/-! ### Digits -/

namespace Numeral

def AreDigits (cs : List Char) : Prop := cs ≠ [] ∧ ∀ c ∈ cs, c.isDigit = true

theorem AreDigits.append {ds cs : List Char} (h : AreDigits ds)
    (hcs : ∀ c ∈ cs, c.isDigit = true) : AreDigits (ds ++ cs) := by
  refine ⟨List.append_ne_nil_of_left_ne_nil h.1 cs, fun c hc => ?_⟩
  rcases List.mem_append.1 hc with hc | hc
  · exact h.2 c hc
  · exact hcs c hc

theorem AreDigits.of_subset {ds cs : List Char} (h : AreDigits ds) (hcs : cs ⊆ ds)
    (hne : cs ≠ []) : AreDigits cs :=
  ⟨hne, fun c hc => h.2 c (hcs hc)⟩

theorem areDigits_zero : AreDigits ['0'] :=
  ⟨List.cons_ne_nil _ _, List.forall_mem_singleton.2 rfl⟩

theorem isDigit_of_mem_zeros {n : Nat} : ∀ c ∈ List.replicate n '0', c.isDigit = true := by
  intro c hc
  rw [List.eq_of_mem_replicate hc]
  rfl

theorem areDigits_digitsOf (n : Nat) : AreDigits (digitsOf n) :=
  ⟨Nat.toDigits_ne_nil, fun _ hc => Nat.isDigit_of_mem_toDigits (by decide) (by decide) hc⟩

@[simp] theorem valueOfDigits_digitsOf (n : Nat) : valueOfDigits (digitsOf n) = n :=
  Nat.ofDigitChars_toDigits (by decide) (by decide)

theorem digitsOf_zero : digitsOf 0 = ['0'] := rfl

theorem digitsOf_ne_zero_cons {n : Nat} (hn : n ≠ 0) (cs : List Char) : digitsOf n ≠ '0' :: cs := by
  have hsmall : ∀ k < 10, k ≠ 0 → Nat.digitChar k ≠ '0' := by decide
  induction n using Nat.strongRecOn generalizing cs with
  | ind n ih =>
    rcases Nat.lt_or_ge n 10 with hlt | hge
    · rw [digitsOf, Nat.toDigits_of_lt_base hlt]
      intro h
      exact hsmall n hlt hn (List.cons.inj h).1
    · rw [digitsOf, Nat.toDigits_of_base_le (by decide) hge]
      intro h
      rcases List.append_eq_cons_iff.1 h with ⟨hnil, -⟩ | ⟨cs', hcons, -⟩
      · exact Nat.toDigits_ne_nil hnil
      · exact ih (n / 10) (by omega) (by omega) cs' hcons

/-- The numeral has the form of a JSON number. -/
structure IsRegular (n : Numeral) : Prop where
  whole : AreDigits n.whole
  lead : ∀ cs, n.whole = '0' :: cs → cs = []
  fraction : ∀ digits ∈ n.fraction, AreDigits digits
  exponent : ∀ e ∈ n.exponent, AreDigits e.2

theorem isRegular_digitsOf (negative : Bool) (n : Nat) :
    IsRegular ⟨negative, digitsOf n, none, none⟩ where
  whole := areDigits_digitsOf n
  lead cs h := by
    by_cases hn : n = 0
    · rw [hn, digitsOf_zero] at h
      exact (List.cons.inj h).2.symm
    · exact absurd h (digitsOf_ne_zero_cons hn cs)
  fraction := nofun
  exponent := nofun

end Numeral

/-! ### The shortest decimal -/

namespace Decimal

def IsReduced (d : Decimal) : Prop := d.digits ≠ 0 ∨ d.exponent = 0

theorem isReduced_trim {fuel : Nat} {d : Decimal} (h : d.IsReduced) : (d.trim fuel).IsReduced := by
  induction fuel generalizing d with
  | zero => exact h
  | succ fuel ih =>
    rw [trim]
    split
    · rename_i hzero
      refine ih (Or.inl ?_)
      dsimp only
      omega
    · exact h

end Decimal

namespace Magnitude

/-- A decimal that reads back as a positive number is not zero. -/
theorem digits_ne_zero_of_onGrid? {rule : TieRule} {m : Magnitude} {grid : Int} {d : Decimal}
    (hm : m.significand ≠ 0) (h : m.onGrid? rule grid = some d) : d.digits ≠ 0 := by
  have hpow (b n : Nat) (hb : 0 < b) : 0 < b ^ n := Nat.pow_pos hb
  have hlow : 0 < (4 * m.significand - (if m.hasCloseLowerNeighbour then 1 else 2)) *
      2 ^ m.exponent.toNat * 10 ^ (-grid).toNat := by
    refine Nat.mul_pos (Nat.mul_pos ?_ (hpow _ _ (by decide))) (hpow _ _ (by decide))
    split <;> omega
  unfold onGrid? at h
  extract_lets scaled value low high unit below above withEnds belowReads aboveReads gap
    takeAbove at h
  -- no number that is not above zero reads back
  have hbelow : belowReads → below ≠ 0 := by
    intro hreads hzero
    have hlow : 0 < low := hlow
    unfold belowReads at hreads
    rw [hzero, Nat.zero_mul] at hreads
    split at hreads <;> omega
  have habove : above ≠ 0 := Nat.succ_ne_zero below
  split at h
  · rename_i hreads _
    cases h
    dsimp only
    split
    · exact habove
    · exact hbelow (of_decide_eq_true hreads)
  · rename_i hreads _
    cases h
    exact hbelow (of_decide_eq_true hreads)
  · cases h
    exact habove
  · cases h

theorem isReduced_shortest {m : Magnitude} (hm : m.significand ≠ 0) (rule : TieRule) :
    (m.shortest rule).IsReduced := by
  refine Decimal.isReduced_trim ?_
  cases hhit : (List.range 17).findSome? fun count =>
      m.onGrid? rule (m.decimalExponent - (count : Nat)) with
  | none => exact Or.inr rfl
  | some d =>
    obtain ⟨count, -, hgrid⟩ := List.exists_of_findSome?_eq_some hhit
    exact Or.inl (digits_ne_zero_of_onGrid? hm hgrid)

end Magnitude

/-! ### Layouts -/

namespace NumberLayout

open Numeral

theorem areDigits_wholeFraction (layout : NumberLayout) :
    ∀ digits ∈ layout.wholeFraction, AreDigits digits := by
  intro digits h
  rw [wholeFraction] at h
  split at h
  · rw [← Option.some.inj h]
    exact areDigits_zero
  · cases h

theorem isRegular_spellOut (layout : NumberLayout) (negative : Bool) {d : Decimal}
    (hd : d.IsReduced) : (layout.spellOut negative d).IsRegular := by
  have hdigits := areDigits_digitsOf d.digits
  have hzeros {n : Nat} := isDigit_of_mem_zeros (n := n)
  unfold spellOut
  extract_lets digits places
  split
  · -- the zeros of a power of ten stand behind the digits
    refine ⟨hdigits.append hzeros, fun cs h => ?_, areDigits_wholeFraction layout, nofun⟩
    by_cases hzero : d.digits = 0
    · have hexponent : d.exponent = 0 := hd.resolve_left (fun hne => hne hzero)
      rw [hexponent, Int.toNat_zero, List.replicate_zero, List.append_nil] at h
      exact (isRegular_digitsOf negative d.digits).lead cs h
    · rcases List.append_eq_cons_iff.1 h with ⟨hnil, -⟩ | ⟨cs', hcons, -⟩
      · exact absurd hnil hdigits.1
      · exact absurd hcons (digitsOf_ne_zero_cons hzero cs')
  · rename_i hexponent
    have hzero : d.digits ≠ 0 := by
      rcases hd with hzero | hzero
      · exact hzero
      · omega
    have hplaces : 0 < places := by
      unfold places
      omega
    split
    · -- the point stands between two of the digits
      rename_i hlt
      refine ⟨hdigits.of_subset (List.take_subset _ _) ?_, fun cs h => ?_, fun ds hds => ?_, nofun⟩
      · rw [Ne, List.take_eq_nil_iff]
        rintro (hnil | hnil)
        · omega
        · exact hdigits.1 hnil
      · have hwhole := List.take_append_drop (digits.length - places) digits
        have h : digits.take (digits.length - places) = '0' :: cs := h
        rw [h, List.cons_append] at hwhole
        exact absurd hwhole.symm (digitsOf_ne_zero_cons hzero _)
      · rw [← Option.some.inj hds]
        refine hdigits.of_subset (List.drop_subset _ _) ?_
        rw [Ne, List.drop_eq_nil_iff]
        omega
    · -- all digits stand behind the point
      refine ⟨areDigits_zero, fun cs h => (List.cons.inj h).2.symm, fun ds hds => ?_, nofun⟩
      rw [← Option.some.inj hds]
      refine ⟨List.append_ne_nil_of_right_ne_nil _ hdigits.1, fun c hc => ?_⟩
      rcases List.mem_append.1 hc with hc | hc
      · exact hzeros c hc
      · exact hdigits.2 c hc

theorem isRegular_scientific (negative : Bool) (d : Decimal) (exponent : Int) :
    (scientific negative d exponent).IsRegular := by
  have hdigits := areDigits_digitsOf d.digits
  unfold scientific
  extract_lets digits rest
  refine ⟨hdigits.of_subset (List.take_subset _ _) ?_, fun cs h => ?_, fun ds hds => ?_,
    fun e he => ?_⟩
  · rw [Ne, List.take_eq_nil_iff]
    rintro (hnil | hnil)
    · omega
    · exact hdigits.1 hnil
  · have hlength := congrArg List.length h
    rw [List.length_take, List.length_cons] at hlength
    exact List.length_eq_zero_iff.1 (by omega)
  · split at hds
    · cases hds
    · rename_i hrest
      rw [← Option.some.inj hds]
      refine hdigits.of_subset (List.drop_subset _ _) fun hnil => hrest ?_
      rw [List.isEmpty_iff]
      exact hnil
  · rw [← Option.some.inj he]
    exact areDigits_digitsOf _

theorem isRegular_numeral (layout : NumberLayout) (x : Float) :
    (layout.numeral x).IsRegular := by
  unfold numeral
  extract_lets negative m d exponent
  split
  · exact ⟨areDigits_zero, fun cs h => (List.cons.inj h).2.symm, areDigits_wholeFraction layout,
      nofun⟩
  · rename_i hm
    split
    · exact isRegular_spellOut layout negative (Magnitude.isReduced_shortest hm layout.tie)
    · exact isRegular_scientific negative d exponent

end NumberLayout

/-! ### Reading -/

namespace Numeral

def fractionChars : Option (List Char) → List Char
  | some digits => '.' :: digits
  | none => []

def exponentChars : Option (Bool × List Char) → List Char
  | some (true, digits) => 'e' :: '-' :: digits
  | some (false, digits) => 'e' :: '+' :: digits
  | none => []

theorem chars_eq (n : Numeral) :
    n.chars = (if n.negative then ['-'] else []) ++
      (n.whole ++ (fractionChars n.fraction ++ exponentChars n.exponent)) := by
  obtain ⟨negative, whole, fraction, exponent⟩ := n
  simp only [chars, List.append_assoc]
  rfl

end Numeral

namespace Json

def EndsNumeral (rest : List Char) : Prop :=
  ∀ c ∈ rest.head?, c.isDigit = false ∧ c ≠ '.' ∧ c ≠ 'e' ∧ c ≠ 'E'

section

variable {rest : List Char}

theorem head?_exponentChars (exponent : Option (Bool × List Char)) (hrest : EndsNumeral rest) :
    ∀ c ∈ (Numeral.exponentChars exponent ++ rest).head?, c.isDigit = false ∧ c ≠ '.' := by
  intro c hc
  match exponent with
  | none => exact ⟨(hrest c hc).1, (hrest c hc).2.1⟩
  | some (true, digits) | some (false, digits) =>
    rw [← Option.some.inj hc]
    decide

theorem head?_fractionChars (fraction : Option (List Char)) (exponent : Option (Bool × List Char))
    (hrest : EndsNumeral rest) :
    ∀ c ∈ (Numeral.fractionChars fraction ++ (Numeral.exponentChars exponent ++ rest)).head?,
      c.isDigit = false := by
  intro c hc
  cases fraction with
  | none => exact (head?_exponentChars exponent hrest c hc).1
  | some digits =>
    rw [← Option.some.inj hc]
    rfl

theorem readExponent_exponentChars (negative : Bool) (whole : List Char)
    (fraction : Option (List Char)) {exponent : Option (Bool × List Char)}
    (h : ∀ e ∈ exponent, Numeral.AreDigits e.2) (hrest : EndsNumeral rest) :
    readExponent negative whole fraction (Numeral.exponentChars exponent ++ rest) =
      (.number ⟨negative, whole, fraction, exponent⟩, rest) := by
  have hstops : ∀ c ∈ rest.head?, c.isDigit = false := fun c hc => (hrest c hc).1
  match exponent with
  | none =>
    rw [Numeral.exponentChars, List.nil_append]
    cases rest with
    | nil => rfl
    | cons c rest =>
      obtain ⟨-, -, he, hE⟩ := hrest c rfl
      exact if_neg (not_or.2 ⟨he, hE⟩)
  | some (true, digits) | some (false, digits) =>
    obtain ⟨hne, hdigits⟩ := h _ rfl
    obtain ⟨htake, hdrop⟩ := takeWhile_run hdigits hstops
    simp only [Numeral.exponentChars, List.cons_append, readExponent, true_or, if_true, htake,
      hdrop, List.isEmpty_iff, hne, if_false]

/-- A numeral without a point goes on with its power of ten. -/
theorem readFraction_of_head {cs : List Char} (negative : Bool) (whole : List Char)
    (h : ∀ c ∈ cs.head?, c ≠ '.') :
    readFraction negative whole cs = readExponent negative whole none cs := by
  unfold readFraction
  split
  · exact absurd rfl (h '.' rfl)
  · rfl

theorem readFraction_fractionChars (negative : Bool) (whole : List Char)
    {fraction : Option (List Char)} {exponent : Option (Bool × List Char)}
    (hfraction : ∀ ds ∈ fraction, Numeral.AreDigits ds)
    (hexponent : ∀ e ∈ exponent, Numeral.AreDigits e.2) (hrest : EndsNumeral rest) :
    readFraction negative whole
        (Numeral.fractionChars fraction ++ (Numeral.exponentChars exponent ++ rest)) =
      (.number ⟨negative, whole, fraction, exponent⟩, rest) := by
  have hhead := head?_exponentChars exponent hrest
  cases fraction with
  | none =>
    rw [Numeral.fractionChars, List.nil_append,
      readFraction_of_head negative whole fun c hc => (hhead c hc).2,
      readExponent_exponentChars negative whole none hexponent hrest]
  | some digits =>
    obtain ⟨hne, hdigits⟩ := hfraction _ rfl
    obtain ⟨htake, hdrop⟩ := takeWhile_run hdigits fun c hc => (hhead c hc).1
    simp only [Numeral.fractionChars, List.cons_append, readFraction, htake, hdrop,
      List.isEmpty_iff, hne, if_false]
    exact readExponent_exponentChars negative whole (some digits) hexponent hrest

theorem readNumeral_chars {n : Numeral} (h : n.IsRegular) (hrest : EndsNumeral rest) :
    readNumeral n.negative (n.whole ++
        (Numeral.fractionChars n.fraction ++ (Numeral.exponentChars n.exponent ++ rest))) =
      (.number n, rest) := by
  obtain ⟨htake, hdrop⟩ :=
    takeWhile_run h.whole.2 (head?_fractionChars n.fraction n.exponent hrest)
  have hfraction :=
    readFraction_fractionChars n.negative n.whole h.fraction h.exponent hrest
  unfold readNumeral
  rw [htake, hdrop]
  dsimp only
  split
  · rename_i hnil
    exact absurd hnil h.whole.1
  · rename_i c cs hzero
    exact absurd (h.lead _ hzero) (List.cons_ne_nil _ _)
  · exact hfraction

end

end Json

end RegisterMachine
